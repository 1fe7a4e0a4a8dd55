import PineTools.Yaml.Scalar

/-! The values of a document. Collections are looked through level by level, so that of several
faults the one of the outermost collection counts; the value of a node is built only where it is
asked for. -/
namespace PineTools.Yaml

namespace Document

/-- The node that a reference stands for; other nodes stand for themselves. -/
def follow (d : Document) : Node → Node
  | .reference name => ((d.named.find? fun n => n.1 == name).map Prod.snd).getD .empty
  | n => n

def tagOf (d : Document) (n : Node) : Tag :=
  match d.follow n with
  | .scalar tag _ | .sequence _ tag _ | .mapping _ tag _ => tag
  | .reference _ => .unknown

/-- The text of a scalar. A mapping with the key of a default value has the text of that value, and
one that is its own default value has none. The fuel bounds the number of mappings. -/
def textIn (d : Document) : Nat → Node → Except ReadError Text
  | 0, _ => .error .tooDeep
  | fuel + 1, n =>
    match d.follow n with
    | .scalar _ t => .ok t
    | .mapping _ _ pairs =>
      match pairs.find? fun p => d.tagOf p.1 = .value with
      | some (_, value) => textIn d fuel value
      | none => .error .malformed
    | _ => .error .malformed

def scalarOf (d : Document) (tag : Tag) (n : Node) :
    Except ReadError Yaml := do scalarValue tag (← d.textIn (d.size + 1) n)

/-- The pairs of a mapping with those that it takes over from other mappings, which come first.
`path` are the mappings that are being flattened, and the fuel bounds their number. -/
def flatten (d : Document) :
    Nat → List Nat → List (Node × Node) → Except ReadError (List (Node × Node))
  | 0, _, _ => .error .malformed
  | fuel + 1, path, pairs =>
    let own := pairs.filter fun p => d.tagOf p.1 ≠ .merge
    let taken (n : Node) : Except ReadError (List (Node × Node)) :=
      match d.follow n with
      | .mapping id _ inner =>
        if path.contains id then .ok (inner.filter fun p => d.tagOf p.1 ≠ .merge)
          else flatten d fuel (id :: path) inner
      | _ => .error .malformed
    let source (n : Node) : Except ReadError (List (Node × Node)) :=
      match d.follow n with
      | .sequence _ _ items => (items.mapM taken).map fun parts => parts.reverse.flatten
      | other => taken other
    ((pairs.filter fun p => d.tagOf p.1 = .merge).mapM fun p => source p.2).map fun parts =>
      parts.flatten ++ own

/-- The flattened pairs of a mapping with the given number. -/
def pairsOf (d : Document) (id : Nat) (pairs : List (Node × Node)) :
    Except ReadError (List (Node × Node)) :=
  d.flatten (d.size + 1) [id] pairs

def keyNode (d : Document) (n : Node) : Node :=
  match d.follow n with
  | .scalar .value t => .scalar .text t
  | other => other

/-- A part of a collection: a node, which may be the key of a mapping, or a fault that is met in its
place. -/
inductive Part where
  | node (n : Node)
  | key (n : Node)
  | fault
  deriving Inhabited

def pairParts (d : Document) (item : Node) : List Part :=
  match d.follow item with
  | .mapping _ _ [(k, v)] => [.node k, .node v]
  | _ => [.fault]

def mappingParts (d : Document) (id : Nat) (pairs : List (Node × Node)) : List Part :=
  match d.pairsOf id pairs with
  | .ok ps => ps.flatMap fun p => [.key (d.keyNode p.1), .node p.2]
  | .error _ => [.fault]

/-- The parts of a collection in the order in which they are looked at. -/
def parts (d : Document) : Node → List Part
  | .sequence _ .list items => items.map .node
  | .sequence _ .orderedMap items => items.flatMap d.pairParts
  | .sequence _ .pairs items => items.flatMap d.pairParts
  | .mapping id .mapping pairs => d.mappingParts id pairs
  | .mapping id .set pairs => d.mappingParts id pairs
  | _ => [.fault]

def isCollectionTag (tag : Tag) : Bool := [.list, .mapping, .set, .orderedMap, .pairs].contains tag

/-- A node whose value is a collection, and so cannot be a key. -/
def isCollection (d : Document) (n : Node) : Bool := isCollectionTag (d.tagOf n)

def idOf? : Node → Option Nat
  | .sequence id _ _ => some id
  | .mapping id _ _ => some id
  | _ => none

/-- Looks at a node. A collection that was not met before is to be looked through later. -/
def visit (d : Document) (seen : List Nat) (n : Node) : Except ReadError (List Nat × List Node) :=
  let node := d.follow n
  if (idOf? node).any seen.contains then .ok (seen, [])
  else if d.isCollection node then .ok ((idOf? node).toList ++ seen, [node])
  else (d.scalarOf (d.tagOf node) node).map fun _ => ((idOf? node).toList ++ seen, [])

/-- Looks at the parts of a collection in order. -/
def visitParts (d : Document) (seen : List Nat) :
    List Part → Except ReadError (List Nat × List Node)
  | [] => .ok (seen, [])
  | .fault :: _ => .error .malformed
  | .node n :: rest => do
    let (seen, later) ← d.visit seen n
    let (seen, more) ← visitParts d seen rest
    return (seen, later ++ more)
  | .key n :: rest => do
    let (seen, later) ← d.visit seen n
    if d.isCollection n then .error .malformed
    else
      let (seen, more) ← visitParts d seen rest
      return (seen, later ++ more)

/-- Looks through the collections of one level, and gives those of the next. -/
def visitLevel (d : Document) (seen : List Nat) :
    List Node → Except ReadError (List Nat × List Node)
  | [] => .ok (seen, [])
  | n :: rest => do
    let (seen, inner) ← d.visitParts seen (d.parts n)
    let (seen, more) ← visitLevel d seen rest
    return (seen, inner ++ more)

/-- Looks through all levels. The fuel bounds their number. -/
def visitLevels (d : Document) : Nat → List Nat → List Node → Except ReadError Unit
  | 0, _, _ => .ok ()
  | _ + 1, _, [] => .ok ()
  | fuel + 1, seen, n :: rest => do
    let (seen, inner) ← d.visitLevel seen (n :: rest)
    visitLevels d fuel seen inner

/-- Every part of the document has a value. There are no more levels than collections, but for texts
with the tag of one. -/
def check (d : Document) : Except ReadError Unit := do
  let (seen, root) ← d.visit [] d.root
  d.visitLevels (d.size + 2) seen root

mutual

/-- The value of a node. `path` are the numbers of the collections it lies in, and the fuel bounds
their number. In a document that was looked through, nothing is left for the cases of other tags. -/
def valueIn (d : Document) : Nat → List Nat → Node → Yaml
  | 0, _, _ => .null
  | fuel + 1, path, n =>
    match d.follow n with
    | .scalar tag t => ((scalarValue tag t).toOption).getD .null
    | .sequence id tag items =>
      if path.contains id then .again .list items.length
      else if tag = .list then .list (items.map fun i => valueIn d fuel (id :: path) i)
      else .pairList (items.filterMap fun i => pairIn d fuel (id :: path) i)
    | .mapping id tag pairs =>
      let members := ((d.pairsOf id pairs).toOption).getD []
      if path.contains id then .again .mapping members.length
      else
        let merged :=
          Yaml.mergeKeys (members.map fun p => (valueIn d fuel path (d.keyNode p.1), p.2))
        if tag = .mapping then .mapping (merged.map fun p => (p.1, valueIn d fuel (id :: path) p.2))
        else if tag = .set then .set (merged.map Prod.fst)
        else ((d.scalarOf tag n).toOption).getD .null
    | .reference _ => .null

/-- The pair that a mapping of one key stands for. -/
def pairIn (d : Document) : Nat → List Nat → Node → Option (Yaml × Yaml)
  | 0, _, _ => none
  | fuel + 1, path, n =>
    match d.follow n with
    | .mapping _ _ [(k, v)] => some (valueIn d fuel path k, valueIn d fuel path v)
    | _ => none

end

def value (d : Document) (n : Node) : Yaml := d.valueIn (2 * d.size + 2) [] n

/-- The entries of a document that is a mapping: its keys with the nodes of their values. -/
def entries? (d : Document) : Option (List (Yaml × Node)) :=
  match d.follow d.root with
  | .mapping id .mapping pairs =>
    ((d.pairsOf id pairs).toOption).map fun ps =>
      Yaml.mergeKeys (ps.map fun p => (d.value (d.keyNode p.1), p.2))
  | _ => none

end Document

/-- The character may stand in a document. -/
def isAllowed (c : Char) : Bool :=
  Text.inRanges [(0x09, 0x0a), (0x0d, 0x0d), (0x20, 0x7e), (0x85, 0x85), (0xa0, 0xfffd),
    (0x10000, 0x10ffff)] c.toNat

/-- Reads the only document of a text. A text of blanks and comments holds none. -/
def read (t : Text) : Except ReadError (Option Document) :=
  let t := Text.normalizeBreaks t
  if !t.all isAllowed then .error .malformed
  else do
    let (tokens, failure) := scan t
    match ← Document.ofTokens? tokens failure with
    | none => return none
    | some d => do
      d.check
      return some d

end PineTools.Yaml
