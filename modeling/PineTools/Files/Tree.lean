import PineTools.Files.Path
import PineTools.Text.Quoted

namespace PineTools.Files

/-- What a path names. -/
inductive Node where
  | file (data : ByteArray)
  | directory
  deriving Inhabited

/-- Why the system does not look up a path. None of these reasons is taken for the absence of the
path. -/
inductive Barrier where
  | nameTooLong
  | denied
  | device
  deriving DecidableEq, Repr, Inhabited

/-- Why an operation fails. -/
inductive FileError where
  | noEntry (path : Path)
  | device (path : Path)
  | occupied (path : Path)
  | notDirectory (path : Path)
  | isDirectory (path : Path)
  | ontoDirectory (source target : Path)
  | barred (barrier : Barrier) (path : Path)
  | nullCharacter
  deriving DecidableEq, Repr, Inhabited

namespace FileError

def shown (p : Path) : String := String.ofList (Text.quoted p.text)

def message : FileError → String
  | noEntry p => "[Errno 2] No such file or directory: " ++ shown p
  | device p | barred .device p => "[Errno 5] Input/output error: " ++ shown p
  | barred .denied p => "[Errno 13] Permission denied: " ++ shown p
  | occupied p => "[Errno 17] File exists: " ++ shown p
  | notDirectory p => "[Errno 20] Not a directory: " ++ shown p
  | isDirectory p => "[Errno 21] Is a directory: " ++ shown p
  | ontoDirectory p q => "[Errno 21] Is a directory: " ++ shown p ++ " -> " ++ shown q
  | barred .nameTooLong p => "[Errno 36] File name too long: " ++ shown p
  | nullCharacter => "embedded null byte"

end FileError

/-- A file tree. The directory that all paths start from is always there. -/
structure Tree where
  nodes : List (Path × Node)
  refuses : Path → Bool

/-- Which lookups of paths the system bars, for each state of the files. -/
abbrev Bars := Tree → Path → Option Barrier

namespace Tree

def empty : Tree := ⟨[], fun _ => false⟩

def node? (t : Tree) (p : Path) : Option Node :=
  if p.names.isEmpty then some .directory else (t.nodes.find? fun n => n.1 == p).map Prod.snd

def hasEntry (t : Tree) (p : Path) : Bool := (t.node? p).isSome

def isDirectory (t : Tree) (p : Path) : Bool :=
  match t.node? p with
  | some .directory => true
  | _ => false

def set (t : Tree) (p : Path) (n : Node) : Tree :=
  { t with nodes := (p, n) :: t.nodes.filter fun e => e.1 != p }

def erase (t : Tree) (p : Path) : Tree := { t with nodes := t.nodes.filter fun e => e.1 != p }

def look (bars : Bars) (t : Tree) (p : Path) : Except FileError (Option Node) :=
  match bars t p with
  | some barrier => .error (.barred barrier p)
  | none => .ok (t.node? p)

def checkAncestors (t : Tree) (p : Path) : Except FileError Unit :=
  match p.ancestors.find? fun a => !t.isDirectory a with
  | none => .ok ()
  | some a => if t.hasEntry a then .error (.notDirectory p) else .error (.noEntry p)

/-- Makes the directories of a list that are missing. The tree is returned in any case, as it is
where one of them cannot be made. -/
def addDirectories (bars : Bars) (t : Tree) : List Path → Except FileError Unit × Tree
  | [] => (.ok (), t)
  | a :: rest =>
    if t.hasEntry a then addDirectories bars t rest
    else
      match t.look bars a with
      | .error e => (.error e, t)
      | .ok _ => addDirectories bars (t.set a .directory) rest

/-- Makes a directory and what is missing above it. No path with a null character can be made. -/
def makeDirectories (bars : Bars) (t : Tree) (p : Path) : Except FileError Unit × Tree :=
  if p.hasNull then (.error .nullCharacter, t)
  else
    match t.look bars p with
    | .error e => (.error e, t)
    | .ok found =>
      match p.ancestors.find? fun a => t.hasEntry a && !t.isDirectory a, found with
      | some _, _ => (.error (.notDirectory p), t)
      | none, some (.file _) => (.error (.occupied p), t)
      | none, _ => t.addDirectories bars (p.ancestors ++ [p])

def write (bars : Bars) (t : Tree) (p : Path) (data : ByteArray) : Except FileError Tree := do
  let _ ← t.look bars p
  t.checkAncestors p
  if t.isDirectory p then throw (.isDirectory p)
  if t.refuses p then throw (.device p)
  return t.set p (.file data)

def read (bars : Bars) (t : Tree) (p : Path) : Except FileError ByteArray :=
  match t.look bars p with
  | .error e => .error e
  | .ok (some (.file data)) => .ok data
  | .ok (some .directory) => .error (.isDirectory p)
  | .ok none =>
    match t.checkAncestors p with
    | .ok _ => .error (.noEntry p)
    | .error e => .error e

def remove (bars : Bars) (t : Tree) (p : Path) : Except FileError Tree :=
  match t.read bars p with
  | .ok _ => .ok (t.erase p)
  | .error e => .error e

/-- Moves a file over another one or to a new name. -/
def rename (bars : Bars) (t : Tree) (source target : Path) : Except FileError Tree :=
  match t.read bars source with
  | .error e => .error e
  | .ok data =>
    if t.isDirectory target then .error (.ontoDirectory source target)
    else .ok ((t.erase source).set target (.file data))

/-- Makes the directory of a file and writes it. -/
def place (bars : Bars) (t : Tree) (p : Path) (data : ByteArray) : Except FileError Tree :=
  match t.makeDirectories bars p.parent with
  | (.error e, _) => .error e
  | (.ok _, t) => t.write bars p data

/-- Writes a file by way of a temporary one, so that a failure leaves the file as it was. The tree
is returned in any case. -/
def writeAtomic (bars : Bars) (t : Tree) (p : Path) (data : ByteArray) :
    Except FileError Unit × Tree :=
  let temporary := p.addSuffix ".tmp".toList
  match t.write bars temporary data with
  | .error e => (.error e, t)
  | .ok written =>
    match written.rename bars temporary p with
    | .ok renamed => (.ok (), renamed)
    | .error e => (.error e, written.erase temporary)

/-- The names of the entries of a directory, in their order. -/
def entries (t : Tree) (dir : Path) : List Text :=
  ((t.nodes.filter fun n => n.1.isIn dir).map fun n => n.1.name).mergeSort fun a b =>
    !decide (b < a)

/-- The regular files, in the order of their paths. -/
def files (t : Tree) : List (Text × ByteArray) :=
  let found := t.nodes.filterMap fun n =>
    match n.2 with
    | .file data => some (n.1.text, data)
    | .directory => none
  found.mergeSort fun a b => !decide (b.1 < a.1)

end Tree

namespace Bars

def never : Bars := fun _ _ => none

/-- On the way through the paths there is a name of more than 255 bytes, and up to it all paths are
directories. -/
def meetsLongName (t : Tree) : List Path → Bool
  | [] => false
  | a :: rest => 255 < Text.byteLength a.name || t.isDirectory a && meetsLongName t rest

/-- The usual limits: names of up to 255 bytes, and paths of fewer than 4096. A path with a null
character does not get as far as the system. -/
def lengths : Bars := fun t p =>
  if p.hasNull then none
  else if Text.byteLength p.text ≥ 4096 || meetsLongName t (p.ancestors ++ [p]) then
    some .nameTooLong
  else none

end Bars

end PineTools.Files
