import PineTools.Text.CharClass

/-! Texts as lists of characters, so that offsets count code points. Lines are separated by the
newline alone; the other line breaks matter only where a text is cut into physical lines for a
difference listing. -/
namespace PineTools

abbrev Text := List Char

namespace Text

def trimRight {α : Type} (p : α → Bool) (xs : List α) : List α := (xs.reverse.dropWhile p).reverse

/-- Removes the elements of the longest initial run that satisfies the test. -/
def trimLeft {α : Type} (p : α → Bool) (xs : List α) : List α := xs.dropWhile p

def byteLength (t : Text) : Nat := t.foldl (fun n c => n + c.utf8Size) 0

def strip (t : Text) : Text := trimRight isSpace (trimLeft isSpace t)

/-- Removes white space in the narrow sense at both ends. -/
def stripWhite (t : Text) : Text := trimRight isWhite (trimLeft isWhite t)

def isAllSpace (t : Text) : Bool := t.all isSpace

/-- The lines of a text. A text always has at least one line. -/
def lines : Text → List Text
  | [] => [[]]
  | c :: cs =>
    if c = '\n' then [] :: lines cs
    else
      match lines cs with
      | [] => [[c]]
      | l :: ls => (c :: l) :: ls

/-- Joins lines with single newlines. -/
def unlines : List Text → Text
  | [] => []
  | [l] => l
  | l :: ls => l ++ '\n' :: unlines ls

def lineAt (t : Text) (offset : Nat) : Nat := (t.take offset).count '\n' + 1

/-- The characters from one offset up to another. -/
def slice {α : Type} (xs : List α) (start stop : Nat) : List α := (xs.take stop).drop start

/-- Physical lines, each with its line break. A carriage return and a newline form one break. -/
def physicalLines : Text → List Text
  | [] => []
  | '\r' :: '\n' :: cs => ['\r', '\n'] :: physicalLines cs
  | c :: cs =>
    if isLineBreak c then [c] :: physicalLines cs
    else
      match physicalLines cs with
      | [] => [[c]]
      | l :: ls => (c :: l) :: ls

/-- The column after reading blanks and tabs, with tab stops at every multiple of the given size. -/
def columnAfter (tab : Nat) (leading : Text) : Nat :=
  leading.foldl (fun column c => if c = '\t' then column + (tab - column % tab) else column + 1) 0

/-- Replaces every carriage return, with a following newline if there is one, by a newline. -/
def normalizeBreaks : Text → Text
  | [] => []
  | '\r' :: '\n' :: cs => '\n' :: normalizeBreaks cs
  | c :: cs => (if c = '\r' then '\n' else c) :: normalizeBreaks cs

def joinWith (separator : Text) : List Text → Text
  | [] => []
  | [p] => p
  | p :: ps => p ++ separator ++ joinWith separator ps

end Text
end PineTools
