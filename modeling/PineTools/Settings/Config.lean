import PineTools.Json.Parser
import PineTools.Json.Printer
import PineTools.Settings.Basic
import PineTools.Settings.Host
import PineTools.Text.Utf8

/-! Configuration. Settings come from the environment first, from a configuration file second, and
otherwise have their standard values. An unusable file or variable is passed over. -/
namespace PineTools

open Files

abbrev Environment := List (Text × Text)

def Environment.value? (env : Environment) (name : String) : Option Text :=
  ((env.find? fun v => v.1 == name.toList).map Prod.snd).filter fun t => !t.isEmpty

namespace Config

def fileVariable : String := "PINESCRIPT_CONFIG_FILE"

def historyVariable : String := "PINESCRIPT_HISTORY_DIR"

def versionVariable : String := "PINESCRIPT_DEFAULT_VERSION"

def timeVariable : String := "PINESCRIPT_MAX_VALIDATION_TIME"

def standardFile : Text := "pinescript.json".toList

/-- Why a configuration file cannot be passed over. -/
inductive Error where
  | file (error : FileError)
  | notText (fault : Utf8Fault)
  | numeral (error : Decimal.NumeralError)
  | tooDeep
  deriving DecidableEq, Repr, Inhabited

def file (given : Option Text) (env : Environment) : Path :=
  .ofText (((given.filter fun t => !t.isEmpty).or (env.value? fileVariable)).getD standardFile)

/-- The fields that the bytes of a configuration file hold. Bytes that are malformed or no object
hold none. -/
def fieldsOf (host : Host) (bytes : ByteArray) : Except Error (List (Text × Json)) :=
  match Text.decodeUtf8 bytes with
  | .error e => .error (.notText e)
  | .ok text =>
    match Json.parse host.nesting text with
    | .ok (.obj fields) => .ok fields
    | .ok _ => .ok []
    | .error .malformed => .ok []
    | .error (.numeral e) => .error (.numeral e)
    | .error .tooDeep => .error .tooDeep

/-- The fields of the configuration file. A file that is missing or cannot be opened has none, but
the file must be one that can be looked up. -/
def load (host : Host) (tree : Tree) (file : Path) : Except Error (List (Text × Json)) :=
  match tree.look host.bars file with
  | .error e => .error (.file e)
  | .ok none => .ok []
  | .ok (some _) =>
    match tree.read host.bars file with
    | .error _ => .ok []
    | .ok bytes => fieldsOf host bytes

/-- The settings of the file, or the standard ones if any field is wrong. -/
def fileSettings (reading : Reading) (fields : List (Text × Json)) : Settings :=
  match Settings.ofFields reading fields with
  | .ok s => s
  | .bad _ => .standard

def withHistory (env : Environment) (s : Settings) : Settings :=
  match env.value? historyVariable with
  | some directory => { s with history := { s.history with directory } }
  | none => s

def withVersion (env : Environment) (s : Settings) : Settings :=
  match (env.value? versionVariable).map fun t => ScriptVersion.parse (.str t) with
  | some (.ok defaultVersion) => { s with defaultVersion }
  | _ => s

def withTime (env : Environment) (s : Settings) : Settings :=
  match (env.value? timeVariable).bind Decimal.readFloat? with
  | some maxTime => if maxTime ≤ 0 then s
      else { s with validation := { s.validation with maxTime } }
  | none => s

def settings (reading : Reading) (env : Environment) (fields : List (Text × Json)) : Settings :=
  withTime env (withVersion env (withHistory env (fileSettings reading fields)))

def resolve (host : Host) (tree : Tree) (given : Option Text) (env : Environment) :
    Except Error Settings :=
  (load host tree (file given env)).map (settings host.reading env)

/-- Writes the settings to a file. If that fails the files stay as they are. -/
def save (host : Host) (tree : Tree) (file : Path) (s : Settings) : Tree :=
  match tree.write host.bars file (Text.encodeUtf8 (Json.render .portable (s.toJson .float))) with
  | .ok written => written
  | .error _ => tree

end Config
end PineTools
