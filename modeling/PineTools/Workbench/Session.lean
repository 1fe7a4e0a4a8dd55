import PineTools.Workbench.Basic

namespace PineTools

structure Session (κ ι : Type) where
  workbench : Workbench κ ι
  script : Text
  lastId : Option Text

namespace Session

variable {κ ι : Type}

def new (workbench : Workbench κ ι) (script : Text) : Session κ ι := ⟨workbench, script, none⟩

def set (s : Session κ ι) (script : Text) : Session κ ι := { s with script }

def detect (s : Session κ ι) :
    Except Decimal.NumeralError ScriptVersion := s.workbench.detect s.script

def validate [Clock κ Float] (s : Session κ ι) (declared : Option Json) (budget : Option Float) :
    Except (ValidationFailure Float) ValidationResult × Session κ ι :=
  let (outcome, workbench) := s.workbench.validate declared budget s.script
  (outcome, { s with workbench })

def fix (s : Session κ ι) : Repair.FixResult × Session κ ι :=
  let result := s.workbench.fix s.script
  (result, s.set result.script)

def format (s : Session κ ι) (options : Option FormatOptions) : Layout.FormatResult × Session κ ι :=
  let result := s.workbench.format options s.script
  (result, s.set result.formatted)

def convert (s : Session κ ι) (target : Json) : Except VersionError Text × Session κ ι :=
  match s.workbench.convert target s.script with
  | .ok script => (.ok script, s.set script)
  | .error e => (.error e, s)

/-- Saves the script and remembers its identifier. -/
def save [Clock κ Float] [Clock ι Int] (s : Session κ ι) (notes : Option Text) :
    Except SaveFailure Text × Session κ ι :=
  match s.workbench.save notes s.script with
  | (.ok id, workbench) => (.ok id, { s with workbench, lastId := some id })
  | (.error e, workbench) => (.error e, { s with workbench })

/-- The history of an identifier, or else of the one saved last. -/
def history (s : Session κ ι) (id : Option Text) :
    Except History.LoadError (List History.Record) × Session κ ι :=
  match id.or s.lastId with
  | none => (.error .noId, s)
  | some id =>
    let (records, workbench) := s.workbench.history id
    (records, { s with workbench })

/-- A record of an identifier, or else of the one saved last. -/
def get (s : Session κ ι) (id : Option Text) (index : Option Int) :
    Except History.LoadError (Option History.Record) × Session κ ι :=
  match id.or s.lastId with
  | none => (.error .noId, s)
  | some id =>
    let (found, workbench) := s.workbench.get id index
    (found, { s with workbench })

def compare (s : Session κ ι) (old : Text) : List Text := History.compare old s.script

end Session
end PineTools
