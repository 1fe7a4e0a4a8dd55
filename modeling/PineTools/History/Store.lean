import PineTools.Digest.Sha256
import PineTools.History.Instant
import PineTools.History.Record
import PineTools.Settings.Host
import PineTools.Text.Utf8
import PineTools.Validate.Budget

/-! The store of script histories. Each script has a directory named after its identifier; each save
adds a source file and a metadata file named after the instant of the save, and changes no other.
Loading reads the files in the order of their names, which is the order of the instants. A cache
remembers the histories that were loaded. -/
namespace PineTools.History

open Files

/-- A clock that shows given instants one after the other, and the last one from then on. -/
structure InstantClock where
  next : Int
  later : List Int
  deriving DecidableEq, Repr, Inhabited

namespace InstantClock

def ofList : List Int → InstantClock
  | [] => ⟨0, []⟩
  | t :: ts => ⟨t, ts⟩

def read (k : InstantClock) : Int × InstantClock :=
  match k.later with
  | [] => (k.next, k)
  | t :: ts => (k.next, ⟨t, ts⟩)

end InstantClock

instance : Clock InstantClock Int := ⟨InstantClock.read⟩

/-- A store: its directory, whether it caches, the files, the cached histories, the clock and the
host. -/
structure Store (κ : Type) where
  directory : Path
  cacheEnabled : Bool
  tree : Tree
  cache : List (Text × List Record)
  clock : κ
  host : Host

/-- Why a save fails. -/
inductive SaveError where
  | file (error : FileError)
  | undated
  deriving DecidableEq, Repr, Inhabited

/-- Why a history cannot be given. -/
inductive LoadError where
  | noId
  | badId (id : Text)
  | file (error : FileError)
  | notText (fault : Utf8Fault)
  | numeral (error : Decimal.NumeralError)
  | tooDeep
  deriving DecidableEq, Repr, Inhabited

def LoadError.message : LoadError → String
  | .noId => "Invalid script id: None"
  | .badId id => "Invalid script id: " ++ String.ofList (Text.quoted id)
  | .file e => e.message
  | .notText fault => fault.message
  | .numeral e => e.message
  | .tooDeep => "the metadata nest too deeply"

def sourceEnding : Text := ".src".toList

def metadataEnding : Text := ".meta.json".toList

/-- The first instant from the given one on whose source file does not exist. Every instant that is
passed over has a file of its own, so the number of files bounds the search. -/
def freeInstant (bars : Bars) (tree : Tree) (directory : Path) : Nat → Int → Except SaveError Int
  | 0, _ => .error .undated
  | fuel + 1, t =>
    if !isDated t then .error .undated
    else
      match tree.look bars (directory.child (fileStem t ++ sourceEnding)) with
      | .error e => .error (.file e)
      | .ok (some _) => freeInstant bars tree directory fuel (t + 1)
      | .ok none => .ok t

/-- Identifiers are lowercase hexadecimal digits. A single newline behind them is let through. -/
def isId (id : Text) : Bool :=
  let digits := if id.getLast? == some '\n' then id.dropLast else id
  !digits.isEmpty && digits.all fun c => Text.isAsciiDigit c || ('a' ≤ c && c ≤ 'f')

/-- The record of one source file, if both its files can be read. Bytes that are no text, numbers
that are too long and brackets inside too many others are errors; anything else that is wrong leaves
the entry out. -/
def loadEntry (host : Host) (tree : Tree) (directory : Path) (name : Text) :
    Except LoadError (Option Record) :=
  let stem := name.take (name.length - sourceEnding.length)
  match tree.read host.bars (directory.child (stem ++ metadataEnding)) with
  | .error _ => .ok none
  | .ok metadataBytes =>
    match Text.decodeUtf8 metadataBytes with
    | .error e => .error (.notText e)
    | .ok metadataText =>
      match Json.parse host.nesting metadataText with
      | .error .malformed => .ok none
      | .error (.numeral e) => .error (.numeral e)
      | .error .tooDeep => .error .tooDeep
      | .ok metadata =>
        match tree.read host.bars (directory.child name) with
        | .error _ => .ok none
        | .ok bytes =>
          match Text.decodeUtf8 bytes with
          | .error e => .error (.notText e)
          | .ok content => .ok (Record.ofMetadata? host.reading metadata content)

def loadEntries (host : Host) (tree : Tree) (directory : Path) :
    List Text → Except LoadError (List Record)
  | [] => .ok []
  | name :: rest =>
    match loadEntry host tree directory name with
    | .error e => .error e
    | .ok found => (loadEntries host tree directory rest).map (found.toList ++ ·)

def loadDirectory (host : Host) (tree : Tree) (directory : Path) : Except LoadError (List Record) :=
  match tree.look host.bars directory with
  | .error e => .error (.file e)
  | .ok (some .directory) =>
    loadEntries host tree directory
      ((tree.entries directory).filter fun n => sourceEnding.isSuffixOf n)
  | .ok _ => .ok []

/-- The record at an index; negative ones count from the end. -/
def recordAt? (records : List Record) (index : Int) : Option Record :=
  if index ≥ 0 then records[index.toNat]?
  else if index.natAbs ≤ records.length then records[records.length - index.natAbs]?
  else none

namespace Store

variable {κ : Type}

/-- A store on a plain host without a history in its cache. -/
def new (directory : Path) (cacheEnabled : Bool) (tree : Tree) (clock : κ) : Store κ :=
  ⟨directory, cacheEnabled, tree, [], clock, .plain⟩

def on (s : Store κ) (host : Host) : Store κ := { s with host }

def cached? (s : Store κ) (id : Text) : Option (List Record) :=
  if s.cacheEnabled then (s.cache.find? fun c => c.1 == id).map Prod.snd else none

/-- Adds a record to a history that is cached. -/
def remember (s : Store κ) (id : Text) (r : Record) : Store κ :=
  if s.cacheEnabled then
    { s with cache := s.cache.map fun c => if c.1 == id then (c.1, c.2 ++ [r]) else c }
  else s

def writeRecord (s : Store κ) (directory : Path) (stem : Text) (r : Record) :
    Except SaveError Unit × Store κ :=
  match s.tree.writeAtomic s.host.bars (directory.child (stem ++ sourceEnding))
      (Text.encodeUtf8 r.content) with
  | (.error e, tree) => (.error (.file e), { s with tree })
  | (.ok (), tree) =>
    match tree.writeAtomic s.host.bars (directory.child (stem ++ metadataEnding))
        (Text.encodeUtf8 r.metadataText) with
    | (.error e, tree) => (.error (.file e), { s with tree })
    | (.ok (), tree) => (.ok (), { s with tree })

/-- Saves a script and returns its identifier. Saving the same script again adds another record. -/
def save [Clock κ Int] (s : Store κ) (script : Text) (version : ScriptVersion) (valid : Bool)
    (notes : Option Text) :
    Except SaveError Text × Store κ :=
  let id := Digest.contentId script
  let directory := s.directory.child id
  match s.tree.makeDirectories s.host.bars directory with
  | (.error e, tree) => (.error (.file e), { s with tree })
  | (.ok (), tree) =>
    let (now, clock) := Clock.read s.clock
    let s := { s with tree, clock }
    match freeInstant s.host.bars tree directory (tree.nodes.length + 1) now with
    | .error e => (.error e, s)
    | .ok t =>
      let r : Record := ⟨id, timestamp t, script, version, valid, notes⟩
      match s.writeRecord directory (fileStem t) r with
      | (.error e, s) => (.error e, s)
      | (.ok (), s) => (.ok id, s.remember id r)

/-- The history of an identifier, the oldest record first. An unknown identifier has an empty one.
-/
def history (s : Store κ) (id : Text) : Except LoadError (List Record) × Store κ :=
  if !isId id then (.error (.badId id), s)
  else
    match s.cached? id with
    | some records => (.ok records, s)
    | none =>
      match loadDirectory s.host s.tree (s.directory.child id) with
      | .error e => (.error e, s)
      | .ok records =>
        (.ok records, if s.cacheEnabled then { s with cache := s.cache ++ [(id, records)] } else s)

def get (s : Store κ) (id : Text) (index : Option Int) :
    Except LoadError (Option Record) × Store κ :=
  let (records, s) := s.history id
  (records.map fun rs =>
    match index with
    | none => rs.getLast?
    | some i => recordAt? rs i, s)

def clearCache (s : Store κ) : Store κ := { s with cache := [] }

end Store

/-- Compares the lines of two texts position by position: a differing pair gives the old line and
then the new one. -/
def compareLines : List Text → List Text → List Text
  | [], [] => []
  | old :: olds, [] => ('-' :: ' ' :: old) :: compareLines olds []
  | [], new :: news => ('+' :: ' ' :: new) :: compareLines [] news
  | old :: olds, new :: news =>
    if old = new then compareLines olds news
    else ('-' :: ' ' :: old) :: ('+' :: ' ' :: new) :: compareLines olds news

/-- Compares two scripts line by line. -/
def compare (old new : Text) : List Text := compareLines (Text.lines old) (Text.lines new)

end PineTools.History
