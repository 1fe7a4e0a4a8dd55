import PineTools.Convert.Basic
import PineTools.History.Store
import PineTools.Layout.Format
import PineTools.Repair.Fix
import PineTools.Settings.Basic

/-! The workbench: the settings and tables, a clock and a store of histories, and all that can be
done to a script with them. Only validating and saving read the clock, and only saving changes
files. -/
namespace PineTools

structure Workbench (κ ι : Type) where
  settings : Settings
  tables : RenameTables Text
  clock : κ
  store : History.Store ι

/-- Why a script is not saved: it cannot be validated, or it cannot be stored. -/
inductive SaveFailure where
  | validation (failure : ValidationFailure Float)
  | store (error : History.SaveError)

namespace Workbench

variable {κ ι : Type}

def new (settings : Settings) (tables : RenameTables Text) (tree : Files.Tree) (clock : κ)
    (instants : ι) : Workbench κ ι :=
  { settings, tables, clock
    store := .new (.ofText settings.history.directory) settings.history.cacheEnabled tree instants }

def detect (w : Workbench κ ι) (script : Text) : Except Decimal.NumeralError ScriptVersion :=
  detectVersion script w.settings.defaultVersion

def fix (w : Workbench κ ι) (script : Text) :
    Repair.FixResult := Repair.fix w.settings.defaultVersion w.tables script

def format (w : Workbench κ ι) (options : Option FormatOptions) (script : Text) :
    Layout.FormatResult :=
  Layout.format w.settings.defaultVersion (options.getD w.settings.formatting) script

def convertTo (w : Workbench κ ι) (target : ScriptVersion) (script : Text) :
    Except Decimal.NumeralError Text :=
  Convert.convertTo w.settings.defaultVersion w.tables script target

def convert (w : Workbench κ ι) (target : Json) (script : Text) : Except VersionError Text :=
  Convert.convert w.settings.defaultVersion w.tables script target

def conclude (w : Workbench κ ι) (run : ValidationRun Float κ) :
    Except (ValidationFailure Float) ValidationResult × Workbench κ ι :=
  (run.outcome, { w with clock := run.clock })

def validateAs [Clock κ Float] (w : Workbench κ ι) (declared : Option ScriptVersion)
    (budget : Option Float) (script : Text) :
    Except (ValidationFailure Float) ValidationResult × Workbench κ ι :=
  w.conclude (PineTools.validateAs w.settings.validation w.settings.defaultVersion declared budget
    w.clock script)

/-- Validates a script. The declared version may be any value that names one. -/
def validate [Clock κ Float] (w : Workbench κ ι) (declared : Option Json) (budget : Option Float)
    (script : Text) :
    Except (ValidationFailure Float) ValidationResult × Workbench κ ι :=
  w.conclude (PineTools.validate w.settings.validation w.settings.defaultVersion declared budget
    w.clock script)

def keep [Clock ι Int] (w : Workbench κ ι) (version : ScriptVersion) (valid : Bool)
    (notes : Option Text) (script : Text) :
    Except SaveFailure Text × Workbench κ ι :=
  let (saved, store) := w.store.save script version valid notes
  (saved.mapError .store, { w with store })

/-- Saves a script with its version and with whether it is valid now. -/
def save [Clock κ Float] [Clock ι Int] (w : Workbench κ ι) (notes : Option Text) (script : Text) :
    Except SaveFailure Text × Workbench κ ι :=
  match w.detect script with
  | .error e => (.error (.validation (.marker e)), w)
  | .ok version =>
    match w.validateAs none none script with
    | (.error e, w) => (.error (.validation e), w)
    | (.ok result, w) => w.keep version result.valid notes script

def history (w : Workbench κ ι) (id : Text) :
    Except History.LoadError (List History.Record) × Workbench κ ι :=
  let (records, store) := w.store.history id
  (records, { w with store })

def get (w : Workbench κ ι) (id : Text) (index : Option Int) :
    Except History.LoadError (Option History.Record) × Workbench κ ι :=
  let (found, store) := w.store.get id index
  (found, { w with store })

end Workbench
end PineTools
