import PineTools.Yaml.Quoted

namespace PineTools.Yaml

/-- The length of the run of a plain scalar that starts a text. A gap ends it, a colon before a gap,
and inside brackets also the signs of flow collections. -/
def plainRun (flow : Bool) : Text → Nat
  | [] => 0
  | c :: rest =>
    if isGap (some c) then 0
    else if c = ':' && (isGap rest.head? || (flow && rest.head?.any isFlowSign)) then 0
    else if flow && (c = '?' || isFlowSign c) then 0
    else plainRun flow rest + 1

/-- The breaks of the empty lines from here on, and the place where the next line goes on; nothing
if that is a mark of a document. The fuel bounds the number of characters. -/
def plainBreaks : Nat → Place → Option Text × Place
  | 0, p => (none, p)
  | fuel + 1, p =>
    if p.atDocumentMark then (none, p)
    else
      let q := p.skipBlanks
      match q.peek with
      | some c =>
        if isBreak c then
          let (breaks, after) := plainBreaks fuel q.next
          (breaks.map (breakOf c :: ·), after)
        else (some [], q)
      | none => (some [], q)

/-- What stands between two runs. -/
structure PlainGap where
  text : Option Text
  crossesLine : Bool
  place : Place

/-- The gap after a run. Without blanks and breaks, and before a mark of a document, there is none.
-/
def plainGap (p : Place) : PlainGap :=
  let (blanks, q) := p.takeWhile (· == ' ')
  match q.peek.filter isBreak with
  | some c =>
    let (breaks, after) := plainBreaks (q.rest.length + 1) q.next
    ⟨breaks.map (fold c), true, after⟩
  | none => ⟨if blanks.isEmpty then none else some blanks, false, q⟩

/-- A plain scalar and the place after it. The flag tells whether a simple key may follow: the
scalar ends at the start of a line. -/
structure PlainScalar where
  text : Text
  keyAllowed : Bool
  place : Place

/-- Reads runs and the gaps between them. `left` is the column of the enclosing block, which the
following lines must exceed. The fuel bounds the number of runs. -/
def plainFrom (flow : Bool) (left : Option Nat) : Nat → Place → Text → Bool → PlainScalar
  | 0, p, _, allowed => ⟨[], allowed, p⟩
  | fuel + 1, p, before, allowed =>
    let length := plainRun flow p.rest
    if p.peek == some '#' || length = 0 then ⟨[], allowed, p⟩
    else
      let run := p.rest.take length
      let gap := plainGap (p.skip length)
      let outside := !flow && left.any (fun column => gap.place.column ≤ column)
      match gap.text with
      | none => ⟨before ++ run, gap.crossesLine, gap.place⟩
      | some between =>
        if gap.place.peek == some '#' || outside then ⟨before ++ run, gap.crossesLine, gap.place⟩
        else
          let more := plainFrom flow left fuel gap.place between gap.crossesLine
          { more with text := before ++ run ++ more.text }

def plainScalar (flow : Bool) (left : Option Nat) (p : Place) : PlainScalar :=
  plainFrom flow left (p.rest.length + 1) p [] false

end PineTools.Yaml
