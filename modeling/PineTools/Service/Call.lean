import PineTools.Service.Reply
import PineTools.Workbench.Basic

/-! The endpoints of the service. Each is a function from the workbench and the checked body of a
request to a value, or to a failure with the status and the detail that the endpoint gives it. What
an endpoint does not catch has neither. -/
namespace PineTools.Service

/-- How an endpoint fails. -/
inductive Failure where
  | http (status : Nat) (detail : Json)
  | uncaught

def badRequest (message : String) : Failure := .http 400 (.ofString message)

def notFound (message : Text) : Failure := .http 404 (.str message)

structure ValidateBody where
  script : Text
  version : Option Text
  maxTime : Option Float

structure FormatBody where
  script : Text
  options : Option FormatOptions

structure ConvertBody where
  script : Text
  target : Text

structure SaveBody where
  script : Text
  notes : Option Text

structure CompareBody where
  old : Text
  new : Text

/-- What a request asks of the workbench, once it has passed all checks. -/
inductive Call where
  | health
  | validate (body : ValidateBody)
  | fix (script : Text)
  | format (body : FormatBody)
  | convert (body : ConvertBody)
  | compare (body : CompareBody)
  | save (body : SaveBody)
  | history (id : Text)
  | latest (id : Text)
  | record (id : Text) (index : Int)

/-- The status of an answer: a saved script is something new. -/
def Call.okStatus : Call → Nat
  | .save _ => 201
  | _ => 200

def release : String := "0.4.0"

def parseVersion (t : Text) : Except Failure ScriptVersion :=
  (ScriptVersion.parse (.str t)).mapError fun e => badRequest e.message

def declaredVersion (version : Option Text) : Except Failure (Option ScriptVersion) :=
  match version.filter fun t => !t.isEmpty with
  | none => .ok none
  | some t => (parseVersion t).map some

def ofValidation : ValidationFailure Float → Failure
  | .timeout t => .http 504 t.diagnostic.toJson
  | .version _ | .marker _ => .uncaught

/-- How a save fails. Only what the file system reports is caught. -/
def ofSave : SaveFailure → Failure
  | .store (.file .nullCharacter) => .uncaught
  | .store (.file e) => .http 500 (.ofString ("Failed to save script version: " ++ e.message))
  | .store .undated | .validation _ => .uncaught

/-- The history of an identifier, which must not be empty. Only errors of values are caught, which a
barred lookup and metadata that nest too deeply are not. -/
def requireHistory (id : Text) (loaded : Except History.LoadError (List History.Record)) :
    Except Failure (List History.Record) :=
  match loaded with
  | .error (.file _) | .error .tooDeep => .error .uncaught
  | .error e => .error (badRequest e.message)
  | .ok [] => .error (notFound ("No history for script ".toList ++ id))
  | .ok records => .ok records

def unknownIndex (id : Text) (index : Int) : Failure :=
  notFound ("Script ".toList ++ id ++ " has no version at index ".toList ++ Json.intText index)

variable {κ ι : Type}

abbrev Outcome (κ ι : Type) := Except Failure Json × Workbench κ ι

def validateScript [Clock κ Float] (w : Workbench κ ι) (body : ValidateBody) : Outcome κ ι :=
  match declaredVersion body.version with
  | .error e => (.error e, w)
  | .ok declared =>
    let (outcome, w) := w.validateAs declared body.maxTime body.script
    ((outcome.mapError ofValidation).map ValidationResult.toJson, w)

def convertScript (w : Workbench κ ι) (body : ConvertBody) : Except Failure Json := do
  let target ← parseVersion body.target
  let source ← (w.detect body.script).mapError fun _ => Failure.uncaught
  let script ← (w.convertTo target body.script).mapError fun _ => Failure.uncaught
  return .ofFields
    [("script", .str script), ("source_version", .ofString source.name),
     ("target_version", .ofString target.name)]

def saveScript [Clock κ Float] [Clock ι Int] (w : Workbench κ ι) (body : SaveBody) : Outcome κ ι :=
  let (saved, w) := w.save body.notes body.script
  ((saved.mapError ofSave).map fun id => .ofFields [("id", .str id)], w)

def showHistory (w : Workbench κ ι) (id : Text) : Outcome κ ι :=
  let (loaded, w) := w.history id
  ((requireHistory id loaded).map (.ofList History.Record.toJson), w)

def showLatest (w : Workbench κ ι) (id : Text) : Outcome κ ι :=
  let (loaded, w) := w.history id
  ((requireHistory id loaded).map fun records =>
    .ofOption History.Record.toJson records.getLast?, w)

def showRecord (w : Workbench κ ι) (id : Text) (index : Int) : Outcome κ ι :=
  let (loaded, w) := w.history id
  match requireHistory id loaded with
  | .error e => (.error e, w)
  | .ok _ =>
    -- The records are asked for once more, and nothing catches what that may raise.
    match w.get id (some index) with
    | (.error _, w) => (.error .uncaught, w)
    | (.ok none, w) => (.error (unknownIndex id index), w)
    | (.ok (some record), w) => (.ok record.toJson, w)

def Call.serve [Clock κ Float] [Clock ι Int] (w : Workbench κ ι) : Call → Outcome κ ι
  | health =>
    (.ok (.ofFields [("status", .ofString "healthy"), ("version", .ofString release)]), w)
  | validate body => validateScript w body
  | fix script => (.ok (w.fix script).toJson, w)
  | format body => (.ok (w.format body.options body.script).toJson, w)
  | convert body => (convertScript w body, w)
  | compare body =>
    (.ok (.ofFields [("diff", .ofList .str (History.compare body.old body.new))]), w)
  | save body => saveScript w body
  | history id => showHistory w id
  | latest id => showLatest w id
  | record id index => showRecord w id index

end PineTools.Service
