import PineTools.Files.Path
import PineTools.Text.Percent

namespace PineTools.Service

/-- What a request can ask for. The script endpoints lie below `/api/scripts`. -/
inductive Endpoint where
  | health
  | validate
  | fix
  | format
  | convert
  | compare
  | save
  | history (id : Text)
  | latest (id : Text)
  | record (id index : Text)
  deriving DecidableEq, Repr, Inhabited

namespace Endpoint

def method : Endpoint → String
  | health | history _ | latest _ | record _ _ => "GET"
  | validate | fix | format | convert | compare | save => "POST"

/-- A part of a path is a name. A newline behind the name is let through. -/
def isNamed (name : String) (part : Text) : Bool :=
  part == name.toList || part == name.toList ++ ['\n']

/-- The script endpoints without parameters. -/
def plain : List (String × Endpoint) :=
  [("validate", validate), ("fix", fix), ("format", format), ("convert", convert),
    ("compare", compare), ("versions", save)]

def ofScriptParts? : List Text → Option Endpoint
  | [name] => (plain.find? fun e => isNamed e.1 name).map Prod.snd
  | [folder, id] => if folder == "versions".toList && !id.isEmpty then some (history id) else none
  | [folder, id, last] =>
    if folder == "versions".toList && !id.isEmpty && !last.isEmpty then
      some (if isNamed "latest" last then latest id else record id last)
    else none
  | _ => none

def ofParts? : List Text → Option Endpoint
  | [[], name] => if isNamed "health" name then some health else none
  | [] :: api :: scripts :: rest =>
    if api == "api".toList && scripts == "scripts".toList then ofScriptParts? rest else none
  | _ => none

def ofExactPath? (path : Text) : Option Endpoint := ofParts? (Files.Path.splitSlashes path)

/-- The endpoint that a path names. Slashes behind the path of an endpoint are passed over. -/
def ofPath? (path : Text) :
    Option Endpoint := (ofExactPath? path).or (ofExactPath? (Text.trimRight (· == '/') path))

/-- Takes one more part of a path: a single dot stays where it is, and two dots go one part back,
but not above the root. -/
def enter (parts : List Text) (part : Text) : List Text :=
  if part == ['.'] then parts
  else if part == ['.', '.'] then if parts == [[]] then parts else parts.dropLast
  else parts ++ [part]

/-- The path of an address: what comes before a query or a fragment, without dots for parts, and
decoded. -/
def pathOf (address : Text) : Text :=
  let parts := Files.Path.splitSlashes (address.takeWhile fun c => c != '?' && c != '#')
  Text.percentDecode (Text.joinWith ['/'] (parts.foldl enter []))

end Endpoint
end PineTools.Service
