import PineTools.Rename.Tables
import PineTools.Yaml.Document

namespace PineTools

/-- Why a document gives no tables. -/
inductive TableError where
  | unreadable (error : Yaml.ReadError)
  | noMapping
  | noPair (index length : Nat)
  | noSequence
  | noText (error : Decimal.NumeralError)
  deriving DecidableEq, Repr, Inhabited

def TableError.message : TableError → String
  | .unreadable e => e.message
  | .noMapping => "the document is no mapping"
  | .noPair index length =>
    s!"dictionary update sequence element #{index} has length {length}; 2 is required"
  | .noSequence => "the value is no sequence of pairs"
  | .noText e => e.message

namespace RenameTables

/-- Two values that a list holds as a pair. The first must be fit for a key. -/
def keyed (key value : Yaml) : Except TableError (Yaml × Yaml) :=
  if key.isKey then .ok (key, value) else .error .noSequence

/-- The values that are met in going through a value, if it can be gone through. -/
def elements? : Yaml → Option (List Yaml)
  | .list items => some items
  | .pairList pairs => some (pairs.map fun p => .list [p.1, p.2])
  | .set members => some members
  | .mapping pairs => some (pairs.map Prod.fst)
  | .str t => some (t.map fun c => .str [c])
  | .bytes data => some (data.map fun b => .int b.toNat)
  | _ => none

/-- The pair that an item of a list stands for: what can be gone through and has two elements. -/
def pairOf (index : Nat) (item : Yaml) : Except TableError (Yaml × Yaml) :=
  match item with
  | .again _ size => if size = 2 then .error .noSequence else .error (.noPair index size)
  | _ =>
    match elements? item with
    | some [a, b] => keyed a b
    | some elements => .error (.noPair index elements.length)
    | none => .error .noSequence

def pairsOf (index : Nat) : List Yaml → Except TableError (List (Yaml × Yaml))
  | [] => .ok []
  | v :: rest => do
    let p ← pairOf index v
    let ps ← pairsOf (index + 1) rest
    return p :: ps

/-- The table that a field of the document holds. A list of pairs is a table too, and a field that
counts as nothing is an empty one. -/
def tableOf (field : Option Yaml) : Except TableError (List (Yaml × Yaml)) :=
  match field with
  | none => .ok []
  | some v =>
    if v.isNothing then .ok []
    else
      match v with
      | .mapping pairs => .ok pairs
      | _ =>
        match elements? v with
        | some items => (pairsOf 0 items).map Yaml.mergeKeys
        | none => .error .noSequence

def textOf (field : Option Yaml) (default : Text) : Except TableError Text :=
  match field with
  | none => .ok default
  | some v => v.text.mapError .noText

def ofDocument (document : Yaml.Document) : Except TableError (RenameTables Yaml) :=
  match document.entries? with
  | none => if (document.value document.root).isNothing then .ok empty else .error .noMapping
  | some entries => do
    let field? := fun key : String =>
      (entries.find? fun e => Yaml.sameKey e.1 (.str key.toList)).map fun e => document.value e.2
    let functions ← tableOf (field? "namespaced_functions")
    let declarations ← tableOf (field? "declaration_renames")
    let remote ← tableOf (field? "remote_data_renames")
    let defaultImport ← textOf ((field? "default_import").filter fun v => !v.isNothing)
      (empty : RenameTables Yaml).defaultImport
    let schemaVersion ← textOf (field? "version") (empty : RenameTables Yaml).schemaVersion
    return ⟨functions, declarations, remote, defaultImport, schemaVersion⟩

def load (file : Option Text) : Except TableError (RenameTables Yaml) :=
  match file with
  | none => .ok empty
  | some t =>
    match Yaml.read t with
    | .error .malformed => .ok empty
    | .error e => .error (.unreadable e)
    | .ok none => .ok empty
    | .ok (some document) => ofDocument document

end RenameTables
end PineTools
