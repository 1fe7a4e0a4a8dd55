import PineTools.Yaml.Lexer
import PineTools.Yaml.Tag

/-! Nodes of a document, put together from its tokens. A reference stands for the node that bears
its name, which may be one it lies in; every collection has a number of its own, so that one can
tell when a collection is met again. -/
namespace PineTools.Yaml

inductive Node where
  | scalar (tag : Tag) (text : Text)
  | sequence (id : Nat) (tag : Tag) (items : List Node)
  | mapping (id : Nat) (tag : Tag) (pairs : List (Node × Node))
  | reference (name : Text)
  deriving Inhabited

def Node.empty : Node := .scalar .null []

/-- A document: its outermost node, the nodes that bear names, and the number of its collections. -/
structure Document where
  root : Node
  named : List (Text × Node)
  size : Nat
  deriving Inhabited

/-- How many collections may lie in each other. -/
def nestingLimit : Nat := 492

/-- What is known while tokens are put together: those that are left and what is wrong after them,
what handles of tags stand for, the names so far with their nodes, and the number of the next
collection. -/
structure Assembly where
  tokens : List Token
  failure : ReadError
  handles : List (Text × Text)
  names : List Text
  named : List (Text × Node)
  next : Nat
  deriving Inhabited

/-- A step that may fail and changes what is known. -/
abbrev Assemble (α : Type) := Assembly → Except ReadError (α × Assembly)

namespace Assemble

def peek : Assemble Token := fun a =>
  match a.tokens with
  | [] => .error a.failure
  | token :: _ => .ok (token, a)

def drop : Assemble Unit := fun a => .ok ((), { a with tokens := a.tokens.drop 1 })

def fail {α : Type} : Assemble α := fun _ => .error .malformed

instance : Monad Assemble where
  pure x := fun a => .ok (x, a)
  bind m f := fun a =>
    match m a with
    | .error e => .error e
    | .ok (x, b) => f x b

def atAny (tokens : List Token) : Assemble Bool := do return tokens.contains (← peek)

def expect (token : Token) : Assemble Unit := do if (← peek) == token then drop else fail

/-- A number for a new collection inside so many others. -/
def freshId (depth : Nat) : Assemble Nat := fun a =>
  if depth ≥ nestingLimit then .error .tooDeep else .ok (a.next, { a with next := a.next + 1 })

def claim : Option Text → Assemble Unit
  | none => pure ()
  | some name => fun a =>
    if a.names.contains name then .error .malformed
      else .ok ((), { a with names := name :: a.names })

def remember (name : Option Text) (node : Node) : Assemble Node := fun a =>
  .ok (node, { a with named := (name.map fun n => (n, node)).toList ++ a.named })

/-- The name and the tag before a node. -/
structure Properties where
  anchor : Option Text
  tag : Option Text
  deriving DecidableEq, Repr, Inhabited

def standardHandles : List (Text × Text) := [(['!'], ['!']), (['!', '!'], standardStem)]

def fullTag (handle : Option Text) (suffix : Text) : Assemble Text :=
  match handle with
  | none => pure suffix
  | some h => fun a =>
    match (a.handles ++ standardHandles).find? fun known => known.1 == h with
    | some (_, stem) => .ok (stem ++ suffix, a)
    | none => .error .malformed

def anchor? : Assemble (Option Text) := do
  match ← peek with
  | .anchor name => do
    drop
    return some name
  | _ => return none

def tag? : Assemble (Option (Option Text × Text)) := do
  match ← peek with
  | .tag handle suffix => do
    drop
    return some (handle, suffix)
  | _ => return none

/-- A name and a tag in either order. -/
def properties : Assemble Properties := do
  let first ← anchor?
  let written ← tag?
  let anchor ← if first.isSome || written.isNone then pure first else anchor?
  let tag ←
    match written with
    | some (handle, suffix) => some <$> fullTag handle suffix
    | none => pure none
  return ⟨anchor, tag⟩

/-- The tag left open: what the node looks like decides. -/
def openTag : Text := ['!']

def Properties.collectionTag (p : Properties) (usual : Tag) : Tag :=
  match p.tag with
  | none => usual
  | some t => if t = openTag then usual else Tag.ofAddress t

def Properties.scalarTag (p : Properties) (plain : Bool) (text : Text) : Tag :=
  match p.tag with
  | none => if plain then Tag.ofLook text else .text
  | some t => if t = openTag then Tag.ofLook text else Tag.ofAddress t

/-- Where a node stands: a block may start there, or also a list that is indented no further than
its key, or only what brackets may hold. -/
inductive Site where
  | block
  | mappingPart
  | flow
  deriving DecidableEq, Repr, Inhabited

def mappingStops : List Token := [.key, .value, .blockEnd]

/-- A name that some node has borne so far. -/
def known (name : Text) : Assemble Node := fun a =>
  if a.names.contains name then .ok (.reference name, a) else .error .malformed

def scalar (p : Properties) (plain : Bool) (text : Text) : Assemble Node := do
  claim p.anchor
  remember p.anchor (.scalar (p.scalarTag plain text) text)

def noContent (p : Properties) : Assemble Node :=
  if p.anchor.isSome || p.tag.isSome then scalar p true [] else fail

/-- A collection with the given properties inside so many others. It may be referred to from its own
parts. -/
def collection (p : Properties) (depth : Nat) (parts : Nat → Assemble Node) : Assemble Node := do
  claim p.anchor
  let id ← freshId depth
  remember p.anchor (← parts id)

mutual

/-- A node inside so many collections. The fuel of this and the following bounds the number of
tokens. -/
def node : Nat → Site → Nat → Assemble Node
  | 0, _, _ => fail
  | fuel + 1, site, depth => do
    match ← peek with
    | .reference name => do
      drop
      known name
    | _ => content fuel (← properties) site depth

def content : Nat → Properties → Site → Nat → Assemble Node
  | 0, _, _, _ => fail
  | fuel + 1, p, site, depth => do
    let listTag := p.collectionTag .list
    let mappingTag := p.collectionTag .mapping
    match ← peek, site with
    | .scalar text plain, _ => do
      drop
      scalar p plain text
    | .flowSequenceStart, _ => do
      drop
      collection p depth fun id => .sequence id listTag <$> flowItems fuel true (depth + 1)
    | .flowMappingStart, _ => do
      drop
      collection p depth fun id => .mapping id mappingTag <$> flowPairs fuel true (depth + 1)
    | .blockEntry, .mappingPart =>
      collection p depth fun id => .sequence id listTag <$> flushItems fuel (depth + 1)
    | _, .flow => noContent p
    | .blockSequenceStart, _ => do
      drop
      collection p depth fun id => .sequence id listTag <$> blockItems fuel (depth + 1)
    | .blockMappingStart, _ => do
      drop
      collection p depth fun id => .mapping id mappingTag <$> blockPairs fuel (depth + 1)
    | _, _ => noContent p

/-- A node, unless one of the given tokens stands in its place. -/
def part : Nat → List Token → Site → Nat → Assemble Node
  | 0, _, _, _ => fail
  | fuel + 1, stops, site, depth => do if ← atAny stops then return .empty else node fuel site depth

/-- The value of a pair, after its colon. Without a colon it is left out. -/
def valuePart : Nat → List Token → Site → Nat → Assemble Node
  | 0, _, _, _ => fail
  | fuel + 1, stops, site, depth => do
    if ← atAny [.value] then do
      drop
      part fuel stops site depth
    else return .empty

def blockItems : Nat → Nat → Assemble (List Node)
  | 0, _ => fail
  | fuel + 1, depth => do
    if ← atAny [.blockEntry] then do
      drop
      let item ← part fuel [.blockEntry, .blockEnd] .block depth
      return item :: (← blockItems fuel depth)
    else do
      expect .blockEnd
      return []

/-- The items of a list that is indented no further than its key. -/
def flushItems : Nat → Nat → Assemble (List Node)
  | 0, _ => fail
  | fuel + 1, depth => do
    if ← atAny [.blockEntry] then do
      drop
      let item ← part fuel (.blockEntry :: mappingStops) .block depth
      return item :: (← flushItems fuel depth)
    else return []

def blockPairs : Nat → Nat → Assemble (List (Node × Node))
  | 0, _ => fail
  | fuel + 1, depth => do
    if ← atAny [.key] then do
      drop
      let key ← part fuel mappingStops .mappingPart depth
      let value ← valuePart fuel mappingStops .mappingPart depth
      return (key, value) :: (← blockPairs fuel depth)
    else do
      expect .blockEnd
      return []

/-- The items of a list in brackets. A pair among them is a mapping of its own. The flag tells that
no item stands before. -/
def flowItems : Nat → Bool → Nat → Assemble (List Node)
  | 0, _, _ => fail
  | fuel + 1, first, depth => do
    if ← atAny [.flowSequenceEnd] then do
      drop
      return []
    else do
      if !first then expect .flowEntry
      match ← peek with
      | .flowSequenceEnd => do
        drop
        return []
      | .key => do
        let item ← collection ⟨none, none⟩ depth fun id =>
          (fun pair => .mapping id .mapping [pair]) <$> flowPair fuel .flowSequenceEnd (depth + 1)
        return item :: (← flowItems fuel false depth)
      | _ => do
        let item ← node fuel .flow depth
        return item :: (← flowItems fuel false depth)

/-- A key with its sign, and its value. -/
def flowPair : Nat → Token → Nat → Assemble (Node × Node)
  | 0, _, _ => fail
  | fuel + 1, closing, depth => do
    drop
    let key ← part fuel [.value, .flowEntry, closing] .flow depth
    let value ← valuePart fuel [.flowEntry, closing] .flow depth
    return (key, value)

/-- The pairs of a mapping in braces. A node without the sign of a key has no value. -/
def flowPairs : Nat → Bool → Nat → Assemble (List (Node × Node))
  | 0, _, _ => fail
  | fuel + 1, first, depth => do
    if ← atAny [.flowMappingEnd] then do
      drop
      return []
    else do
      if !first then expect .flowEntry
      match ← peek with
      | .flowMappingEnd => do
        drop
        return []
      | .key => do
        let pair ← flowPair fuel .flowMappingEnd depth
        return pair :: (← flowPairs fuel false depth)
      | _ => do
        let key ← node fuel .flow depth
        return (key, .empty) :: (← flowPairs fuel false depth)

end

def addHandle (name stem : Text) : Assemble Unit := fun a =>
  if a.handles.any fun h => h.1 == name then .error .malformed
  else .ok ((), { a with handles := (name, stem) :: a.handles })

/-- The directives before a document, up to the mark of its start. Only one may tell the version, of
which the first number must be one. -/
def directives : Nat → Bool → Assemble Unit
  | 0, _ => fail
  | fuel + 1, versionSeen => do
    match ← peek with
    | .directive d => do
      drop
      match d with
      | .version major => if versionSeen || major ≠ 1 then fail else directives fuel true
      | .handle name stem => do
        addHandle name stem
        directives fuel versionSeen
      | .other => directives fuel versionSeen
    | _ => expect .documentStart

/-- The outermost node after the mark of a document's start. -/
def markedRoot (fuel : Nat) : Assemble Node := do
  directives fuel false
  match ← peek with
  | .directive _ | .documentStart | .documentEnd | .streamEnd => return .empty
  | _ => node fuel .block 0

def documentEnds : Nat → Assemble Unit
  | 0 => fail
  | fuel + 1 => do
    if ← atAny [.documentEnd] then do
      drop
      documentEnds fuel
    else expect .streamEnd

def root? (fuel : Nat) : Assemble (Option Node) := do
  match ← peek with
  | .streamEnd => return none
  | .directive _ | .documentStart => do
    let root ← markedRoot fuel
    documentEnds fuel
    return some root
  | _ => do
    let root ← node fuel .block 0
    documentEnds fuel
    return some root

end Assemble

/-- Puts tokens together to a document, if they hold one. -/
def Document.ofTokens? (tokens : List Token) (failure : ReadError) :
    Except ReadError (Option Document) :=
  match Assemble.root? (8 * tokens.length + 8) ⟨tokens, failure, [], [], [], 0⟩ with
  | .error e => .error e
  | .ok (root, a) => .ok (root.map fun r => ⟨r, a.named, a.next⟩)

end PineTools.Yaml
