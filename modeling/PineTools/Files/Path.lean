import PineTools.Text.Basic

namespace PineTools.Files

structure Path where
  root : Text
  names : List Text
  deriving DecidableEq, Repr, Inhabited

namespace Path

def splitSlashes : Text → List Text
  | [] => [[]]
  | c :: cs =>
    if c = '/' then [] :: splitSlashes cs
    else
      match splitSlashes cs with
      | [] => [[c]]
      | p :: ps => (c :: p) :: ps

/-- The path that a text names. Empty names and single dots are left out; exactly two slashes in
front are kept. -/
def ofText (t : Text) : Path :=
  let slashes := (t.takeWhile (· == '/')).length
  { root := if slashes = 0 then [] else if slashes = 2 then ['/', '/'] else ['/']
    names := (splitSlashes t).filter fun n => !n.isEmpty && n != ['.'] }

def text (p : Path) : Text :=
  match p.root, p.names with
  | [], [] => ['.']
  | root, names => root ++ Text.joinWith ['/'] names

def child (p : Path) (name : Text) : Path := { p with names := p.names ++ [name] }

def parent (p : Path) : Path := { p with names := p.names.dropLast }

def name (p : Path) : Text := p.names.getLast?.getD []

def addSuffix (p : Path) (suffix : Text) : Path :=
  { p with names := p.names.dropLast ++ [p.name ++ suffix] }

/-- The directories above a path, the outermost first, without the one that all paths start from. -/
def ancestors (p : Path) : List Path :=
  ((List.range p.names.length).drop 1).map fun n => { p with names := p.names.take n }

def hasNull (p : Path) : Bool := p.names.any fun n => n.contains '\x00'

/-- The path lies directly in the directory. -/
def isIn (p dir : Path) : Bool := p.root == dir.root && !p.names.isEmpty &&
    p.names.dropLast == dir.names

end Path
end PineTools.Files
